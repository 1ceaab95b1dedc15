/-
# Publishing local content

`Client::publish_event`, `Client::publish_dm_raw` and what they call: `EncodedPayload::encode` with
its growing writer, `Event::new_raw_content`, `reserve_payload`, `bind_to_reservation`,
`AcquiredPayload::ingest` and `dm_commit_outgoing`.

A publication is not one transaction.  It reads the head and a random event of the own account,
encodes the content under provisional buffer capacity, signs an event, commits the ENVELOPE together
with a logical reservation, binds its buffer to the reservation, and only then commits the payload.
Capacity can be refused at four of these steps.

Between any two steps other writers commit, other owners change the ledger, and time passes.
`Surroundings` is what the call finds at each of its steps: the transactions of others since the
last one, and the ledger and the clock of that moment.  No ledger is excluded.
-/
import Rostra.Db.Destinations
import Rostra.Db.Run
import Rostra.Db.Watches
import Rostra.Dm.History

namespace Rostra

variable [Primitives]

/-- `Event::new_raw_content`; a parent that is zero is none. -/
def Event.newRawContent (author : RostraId) (kind : EventKind) (delete : Option ShortEventId)
    (singletonAuxKey : Option EventAuxKey) (parentPrev parentAux : Option ShortEventId)
    (timestamp : Timestamp) (content : Bytes) : Event where
  flags := (if delete.isSome then DELETE_PARENT_AUX_CONTENT_FLAG else 0) |||
    (if singletonAuxKey.isSome then SINGLETON_FLAG else 0)
  kind := kind
  contentLen := content.length
  keyAux := singletonAuxKey.getD 0
  timestamp := timestamp
  author := author
  parentPrev := parentPrev.filter (· ≠ 0)
  parentAux := (parentAux <|> delete).filter (· ≠ 0)
  contentHash := blake3 content

end Rostra

namespace Rostra.Db

open Rostra

/-! ## 1. Encoding under capacity

The writer asks for capacity before it grows. -/

/-- `PayloadAllocation::try_grow`: the charge that covers `bytes`. What is held already is enough, or the rest is
asked for. -/
def tryGrow (s : AdmissionState) (held bytes : ℕ) : Except PayloadAdmissionPause ℕ :=
  if bytes ≤ held then .ok held
  else match s.config with
    | none => .error .reservationExpired
    | some config =>
      if min u64Max config.inFlightBytes < s.bufferBytes + (bytes - held) then .error .inFlightBytes
      else .ok bytes

/-- `PayloadWriter`: the bytes written, the capacity of the vector and the charge for it. -/
structure PayloadWriter where
  length : ℕ := 0
  capacity : ℕ := 0
  allocation : ℕ := 0

/-- One `write` of the serializer, with the ledgers at its first and its second try to grow. -/
structure Write where
  bytes : ℕ
  ledger : AdmissionState
  retry : AdmissionState

/-- `PayloadWriter::write`: the capacity doubles if there is room for that, and otherwise grows as
far as it has to. -/
def PayloadWriter.write (w : PayloadWriter) (chunk : Write) :
    Except PayloadAdmissionPause PayloadWriter :=
  let needed := w.length + chunk.bytes
  if w.capacity < needed then
    let preferred := max (max needed (min u64Max (w.capacity * 2))) 128
    match tryGrow chunk.ledger w.allocation preferred with
    | .ok allocation => .ok ⟨needed, preferred, allocation⟩
    | .error _ =>
      match tryGrow chunk.retry w.allocation needed with
      | .ok allocation => .ok ⟨needed, needed, allocation⟩
      | .error reason => .error reason
  else .ok { w with length := needed }

/-- What the encoder finds: the ledger at the first allocation, at each write of the serializer and
at the allocation that is kept. -/
structure Encoding where
  first : AdmissionState
  writes : List Write
  second : AdmissionState

/-- `reserve_payload_allocation`, as its caller sees it: nothing is handed out while admission is
disabled. -/
def allocate (s : AdmissionState) (bytes : ℕ) : Except PayloadAdmissionPause (Option ℕ) :=
  match s.config, reservePayloadAllocation s bytes with
  | none, _ => .ok none
  | some _, .ok _ => .ok (some bytes)
  | some _, .error reason => .error reason

/-- `EncodedPayload::encode`: the capacity that outlives it. While admission is disabled nothing is charged, and
nothing outlives it. -/
def Encoding.encode (e : Encoding) (raw : Bytes) : Except PayloadAdmissionPause (Option ℕ) := do
  match ← allocate e.first 0 with
  | none => return none
  | some _ =>
    let _ ← e.writes.foldlM PayloadWriter.write {}
    allocate e.second raw.length

/-! ## 2. Signing

What goes into a header is read from the tables and the clock. -/

variable [Primitives]

/-- Encoded content, and what its kind says about the event that is to carry it. -/
structure LocalContent where
  kind : EventKind
  singletonKeyAux : Option EventAuxKey := none
  raw : Bytes

/-- The signed event with its payload. The hash in the header is that of these bytes, so the payload is verified by
construction. -/
def LocalContent.signed (env : Env) (content : LocalContent)
    (replace head aux : Option ShortEventId) (now : Timestamp) : VerifiedEventContent where
  event := .ofEvent (Event.newRawContent env.selfId content.kind replace content.singletonKeyAux
    head aux now content.raw)
  content := some content.raw
  verified := by simp [contentMatches, Event.newRawContent]

/-! ## 3. The steps that meet the database

Each of them is one transaction, and sees what others have committed until then. -/

/-- `reserve_payload`: the envelope and the lease, in one transaction. -/
def reservePayload (env : Env) (db : Database) (v : VerifiedEvent) (now : Timestamp)
    (s : AdmissionState) : DbResult (Database × PayloadReservationOutcome) := do
  let (db, _) ← processEventTx env {} db v now (.pushed none none)
  let (outcome, _) ← reservePayloadTx db v s
  pure (db, outcome)

omit [Primitives] in
/-- `bind_to_reservation` of the ledger's own allocation. The lease must be held still, and the capacity must cover
it. -/
def bindToReservation (s : AdmissionState) (capacity : ℕ) (lease : PayloadBuffer) :
    Except PayloadAdmissionPause PayloadBuffer :=
  if capacity < lease.bytes ∨ !leaseHeld s lease then .error .reservationExpired else .ok lease

/-- The step at which capacity was refused. -/
inductive Stage
  | encoding | reservation | binding | ingestion
  deriving DecidableEq

inductive PublishError
  | refused (stage : Stage) (reason : PayloadAdmissionPause)
  | storage (e : DbError)
  | directMessageEncoding
  /-- `DirectMessage(rostra_dm::Error::Invalid)`. -/
  | directMessage
  | recipientUnavailable
  | historyOverflow

omit [Primitives] in
/-- The buffer a reservation leaves the call with. Where admission is disabled there is none, and none is needed.
-/
def boundBuffer (s : AdmissionState) (capacity : ℕ) :
    PayloadReservationOutcome → Except PublishError (Option PayloadBuffer)
  | .reserved lease =>
    match bindToReservation s capacity lease with
    | .ok buffer => .ok (some buffer)
    | .error reason => .error (.refused .binding reason)
  | .deferred reason => .error (.refused .reservation reason)
  | .disabled | .unneeded => .ok none

/-- What others do before a step, and the ledger and the clock it runs at. -/
structure Moment where
  others : List Op
  ledger : AdmissionState
  now : Timestamp

/-- `AcquiredPayload::ingest`: a deferral is an error of a transaction that was committed. -/
def ingestAcquired (env : Env) (c : VerifiedEventContent) (db : Database) (moment : Moment)
    (buffer : Option PayloadBuffer) : Except PublishError Unit × Database :=
  match tryProcessAdmittedEventContent env {} db c moment.now moment.ledger buffer with
  | .error e => (.error (.storage e), db)
  | .ok (db, .deferred reason) => (.error (.refused .ingestion reason), db)
  | .ok (db, _) => (.ok (), db)

omit [Primitives] in
/-- The permit is checked again by the transaction that uses it. Between the two the device may have been retired,
or its time may have run out. -/
def permitCurrent (env : Env) (p : Projections) (body : Dm.MessageBody) (permit : SendPermit)
    (now : Timestamp) : Bool :=
  decide (permit.sender = env.selfId ∧ permit.recipient = body.recipient ∧ now < permit.sendUntil ∧
    permit.sendFrom ≤ now) &&
  !p.idsDmInstallation.any (·.retired) &&
  decide (p.idsDmInstallation.map (·.deviceId) = permit.sendingDevice) &&
  permit.selected.all fun d => decide (p.idsDmDevices.get d.1 = some d.2)

/-- `dm_commit_outgoing`: event, payload and history, or nothing. -/
def dmCommitOutgoing (env : Env) (db : Database) (history : Dm.DmTables) (c : VerifiedEventContent)
    (body : Dm.MessageBody) (permit : SendPermit) (now : Timestamp) (s : AdmissionState)
    (buffer : Option PayloadBuffer) : Except PublishError (Database × Dm.DmTables) :=
  let v := c.event
  if body.sender ≠ env.selfId ∨ v.event.author ≠ env.selfId ∨
      v.event.kind ≠ EventKind.DIRECT_MESSAGE ∨ v.event.isSingleton ∨ v.event.keyAux ≠ 0 ∨
      !c.content.any Primitives.validateFrame then .error .directMessage
  else if !permitCurrent env db.proj body permit now then .error .recipientUnavailable
  else match processEventTx env {} db v now (.pushed none none) with
    | .error e => .error (.storage e)
    | .ok (db, _) =>
      match processEventContentTx env {} db c now s buffer with
      | .error (.payloadAdmissionPaused reason) => .error (.refused .ingestion reason)
      | .error e => .error (.storage e)
      | .ok db =>
        if (db.ev.eventsContentState.get v.id).isSome then .error .directMessage
        else match Dm.dmStoreHistoryTx history body v.id v.event.timestamp with
          | .error .invalid => .error .directMessage
          | .error .overflow => .error .historyOverflow
          | .ok history => .ok (db, history)

/-- `AcquiredPayload::ingest_dm`. -/
def ingestAcquiredDm (env : Env) (c : VerifiedEventContent) (history : Dm.DmTables)
    (body : Dm.MessageBody) (permit : SendPermit) (db : Database) (moment : Moment)
    (buffer : Option PayloadBuffer) : Except PublishError Unit × Database :=
  match dmCommitOutgoing env db history c body permit moment.now moment.ledger buffer with
  | .error e => (.error e, db)
  | .ok (db, _) => (.ok (), db)

/-! ## 4. The two calls

A post or any other public content, and a direct message. -/

/-- What a call finds: the clock, the ledger and the message tables at each of its steps, and the transactions of
others in between. -/
structure Surroundings where
  beforeHead : List Op := []
  beforeAux : List Op := []
  /-- The draw of `get_random_self_event`. -/
  draw : Finset ShortEventId → Option ShortEventId
  encoding : Encoding
  composedAt : Timestamp
  reserve : Moment
  bind : AdmissionState
  ingest : Moment
  /-- The message tables, at the last step. -/
  history : Dm.DmTables := {}

/-- What a call returns, and for each of its transactions the state it found and the one it left. -/
structure Attempt where
  result : Except PublishError VerifiedEvent
  own : List (Database × Database) := []

/-- Where capacity was refused, if that is why the call failed. -/
def Attempt.refusal (a : Attempt) : Option (Stage × PayloadAdmissionPause) :=
  match a.result with
  | .error (.refused stage reason) => some (stage, reason)
  | _ => none

namespace Surroundings

/-- The transactions of others, in their order. -/
def others (s : Surroundings) : List Op :=
  s.beforeHead ++ s.beforeAux ++ s.reserve.others ++ s.ingest.others

/-- Admission is enabled while the content is encoded. -/
def Enabled (s : Surroundings) : Prop :=
  s.encoding.first.config.isSome ∧ s.encoding.second.config.isSome

def atHead (s : Surroundings) (env : Env) (db : Database) : Database :=
  Outcome.run (step env) db s.beforeHead

def atAux (s : Surroundings) (env : Env) (db : Database) : Database :=
  Outcome.run (step env) (s.atHead env db) s.beforeAux

/-- The state that the transaction with the envelope finds: that of the last read, and what others have committed
since. -/
def atReserve (s : Surroundings) (env : Env) (db : Database) : Database :=
  Outcome.run (step env) (s.atAux env db) s.reserve.others

/-- The event of a call; an edit names the post it replaces instead of a random parent. -/
def sign (s : Surroundings) (env : Env) (db : Database) (content : LocalContent)
    (replace : Option ShortEventId) : VerifiedEventContent :=
  content.signed env replace (readHeadTx env.selfId (s.atHead env db).ev.eventsHeads)
    (if replace.isSome then none else s.draw (s.atAux env db).eventsSelf) s.composedAt

/-- Both calls from the reservation on. They differ in the transaction that ingests. -/
def publishReserved (s : Surroundings) (env : Env) (db : Database) (c : VerifiedEventContent)
    (capacity : ℕ)
    (ingest : Database → Moment → Option PayloadBuffer → Except PublishError Unit × Database) :
    Attempt :=
  let found := s.atReserve env db
  match reservePayload env found c.event s.reserve.now s.reserve.ledger with
  | .error e => ⟨.error (.storage e), [(found, found)]⟩
  | .ok (reserved, outcome) =>
    match boundBuffer s.bind capacity outcome with
    | .error e => ⟨.error e, [(found, reserved)]⟩
    | .ok buffer =>
      let found' := Outcome.run (step env) reserved s.ingest.others
      let (result, ingested) := ingest found' s.ingest buffer
      ⟨result.map fun _ => c.event, [(found, reserved), (found', ingested)]⟩

/-- The older path, while admission is disabled: one transaction for both. -/
def publishDirect (s : Surroundings) (env : Env) (db : Database) (c : VerifiedEventContent) :
    Attempt :=
  let found := s.atReserve env db
  match deliver env found (.payload c s.reserve.now s.reserve.ledger) with
  | .error (.payloadAdmissionPaused reason) =>
    ⟨.error (.refused .ingestion reason), [(found, found)]⟩
  | .error e => ⟨.error (.storage e), [(found, found)]⟩
  | .ok stored => ⟨.ok c.event, [(found, stored)]⟩

/-- `Client::publish_event`. -/
def publishEvent (s : Surroundings) (env : Env) (db : Database) (content : LocalContent)
    (replace : Option ShortEventId) : Attempt :=
  match s.encoding.encode content.raw with
  | .error reason => ⟨.error (.refused .encoding reason), []⟩
  | .ok none => s.publishDirect env db (s.sign env db content replace)
  | .ok (some capacity) =>
    let c := s.sign env db content replace
    s.publishReserved env db c capacity (ingestAcquired env c)

/-- `Client::publish_dm_raw`.  The allocation is twice the expected size; `raw` is what `encode`
returned. -/
def publishDmRaw (s : Surroundings) (env : Env) (db : Database) (kind : EventKind) (size : ℕ)
    (body : Option (Dm.MessageBody × SendPermit)) (raw : Option Bytes) : Attempt :=
  match allocate s.encoding.first (2 * size), raw with
  | .error reason, _ => ⟨.error (.refused .encoding reason), []⟩
  | .ok _, none => ⟨.error .directMessageEncoding, []⟩
  | .ok capacity, some raw =>
    let c := s.sign env db ⟨kind, none, raw⟩ none
    let ingest := match body with
      | some (body, permit) => ingestAcquiredDm env c s.history body permit
      | none => ingestAcquired env c
    match capacity with
    | some capacity => s.publishReserved env db c capacity ingest
    | none =>
      let found := s.atReserve env db
      let (result, ingested) := ingest found s.reserve none
      ⟨result.map fun _ => c.event, [(found, ingested)]⟩

end Surroundings

/-- A local publication: an ordinary event or an edit, a message or a device announcement. -/
inductive LocalPublication
  | event (content : LocalContent) (replace : Option ShortEventId)
  | directMessage (kind : EventKind) (size : ℕ) (body : Option (Dm.MessageBody × SendPermit))
      (raw : Option Bytes)

namespace LocalPublication

def publish (p : LocalPublication) (s : Surroundings) (env : Env) (db : Database) : Attempt :=
  match p with
  | event content replace => s.publishEvent env db content replace
  | directMessage kind size body raw => s.publishDmRaw env db kind size body raw

/-- The event that a publication signs. -/
def signed (p : LocalPublication) (s : Surroundings) (env : Env) (db : Database) :
    Option VerifiedEventContent :=
  match p with
  | event content replace => some (s.sign env db content replace)
  | directMessage kind _ _ raw => raw.map fun raw => s.sign env db ⟨kind, none, raw⟩ none

end LocalPublication

end Rostra.Db
