/-
# Downloading the history behind an event

`download_events_from_child` (`util/rpc.rs`) with what it calls: `get_event_from_peers` and
`fetch_event_content_from_peers_detailed` (`connection_cache.rs`), `AcquiredPayload`
(`acquired_payload.rs`) and the preparation of an acquisition (`payload_admission.rs`,
`payload_runtime.rs`).

* The loop keeps a queue and a table with the data of what is queued.  An entry without a timestamp is
  an envelope that has not been looked for; those come first.
* What others decide in one iteration is a `Turn`: the clock, the answers of the peers, the random byte
  and the fate of a payload read.  A call is a list of turns.
* Each transaction commits on its own, so an error keeps what was committed before it.

The counters and the log messages are left out: nothing reads them.
-/
import Rostra.Db.Publication
import Rostra.Lib.Machine
import Rostra.Lib.PairedQueue

namespace Rostra.DownloadEvents

open Rostra Rostra.Db

/-! ## 1. Content

One payload phase: whether the content is wanted, a reservation, the read, and the transaction. -/

/-- Why a call does not return a flag. -/
inductive Stop
  | storage (e : DbError)
  /-- `AcquiredPayload converts deferred ingestion into an error`. -/
  | unreachable
  /-- `Must always be there`. -/
  | mustBeThere
  /-- `Must have event set at this point`. -/
  | mustHaveEvent
  /-- `assert!(q_item_ts_and_depth.is_none())`. -/
  | assertion

structure ContentFetchOutcome where
  acquisitionSatisfied : Bool
  materialized : Bool
  deriving DecidableEq

def ContentFetchOutcome.fromIngest : PayloadIngestOutcome → Except Stop ContentFetchOutcome
  | .processed => .ok ⟨true, true⟩
  | .invalid | .unchanged => .ok ⟨true, false⟩
  | .unavailable => .ok ⟨false, false⟩
  | .deferred _ => .error .unreachable

inductive PayloadAcquisitionPreparation
  | disabled
  | reserved (lease : PayloadBuffer)
  | materialized
  | satisfied
  | deferred (reason : PayloadAdmissionPause)

/-- One attempt at a preparation: the clock, the ledger, and what was checked before it. -/
structure Preparing where
  now : Timestamp
  ledger : AdmissionState
  /-- `check_config`, and the registration of a demand after a refusal. -/
  check : Except DbError Unit := .ok ()

/-- What becomes of one payload read. -/
structure Reading where
  first : Preparing
  retries : List Preparing := []
  /-- `race_payload_reads`. -/
  race : Except PayloadAdmissionPause (Option Bytes)
  now : Timestamp
  ledger : AdmissionState

section Calls

variable [Primitives]

def preparePayloadAcquisitionOnceDetailed (env : Env) (db : Database) (v : VerifiedEvent) (p : Preparing) :
    Database × Except DbError PayloadAcquisitionPreparation :=
  match p.check with
  | .error e => (db, .error e)
  | .ok () =>
    match processEventTx env {} db v p.now (.pushed none none) with
    | .error e => (db, .error e)
    | .ok (db, _) =>
      match tryMaterializeStoredPayload env {} db v.id p.now p.ledger with
      | .error e => (db, .error e)
      | .ok (db, .unavailable) =>
        match reservePayload env db v p.now p.ledger with
        | .error e => (db, .error e)
        | .ok (db, .disabled) => (db, .ok .disabled)
        | .ok (db, .reserved lease) => (db, .ok (.reserved lease))
        | .ok (db, .deferred reason) => (db, .ok (.deferred reason))
        | .ok (db, .unneeded) => (db, .ok .satisfied)
      | .ok (db, .deferred reason) => (db, .ok (.deferred reason))
      | .ok (db, .processed) => (db, .ok .materialized)
      | .ok (db, .invalid) | .ok (db, .unchanged) => (db, .ok .satisfied)

/-- Only a refusal is tried again. -/
def preparePayloadAcquisitionDetailed (env : Env) (db : Database) (v : VerifiedEvent) (p : Preparing) :
    List Preparing → Database × Except DbError PayloadAcquisitionPreparation
  | [] => preparePayloadAcquisitionOnceDetailed env db v p
  | next :: retries =>
    match preparePayloadAcquisitionOnceDetailed env db v p with
    | (db, .ok (.deferred _)) => preparePayloadAcquisitionDetailed env db v next retries
    | (db, result) => (db, result)

/-- `AcquiredPayload::ingest_with_outcome`, and the outcome it stands for. -/
def ingestWithOutcome (env : Env) (db : Database) (c : VerifiedEventContent) (now : Timestamp)
    (ledger : AdmissionState) (buffer : Option PayloadBuffer) : Database × Except Stop ContentFetchOutcome :=
  match tryProcessAdmittedEventContent env {} db c now ledger buffer with
  | .error e => (db, .error (.storage e))
  | .ok (db, .deferred reason) => (db, .error (.storage (.payloadAdmissionPaused reason)))
  | .ok (db, outcome) => (db, ContentFetchOutcome.fromIngest outcome)

def fetchEventContentFromPeersDetailed (env : Env) (db : Database) (v : VerifiedEvent) (r : Reading) :
    Database × Except Stop ContentFetchOutcome :=
  let read (db : Database) (buffer : Option PayloadBuffer) : Database × Except Stop ContentFetchOutcome :=
    match r.race with
    | .error reason => (db, .error (.storage (.payloadAdmissionPaused reason)))
    | .ok bytes =>
      -- a transfer that is not the payload does not complete
      match bytes.bind fun b => VerifiedEventContent.verify v (some b) with
      | none => (db, .ok ⟨false, false⟩)
      | some c => ingestWithOutcome env db c r.now r.ledger buffer
  match preparePayloadAcquisitionDetailed env db v r.first r.retries with
  | (db, .error e) => (db, .error (.storage e))
  | (db, .ok .materialized) => (db, .ok ⟨true, true⟩)
  | (db, .ok .satisfied) => (db, .ok ⟨true, false⟩)
  | (db, .ok (.deferred reason)) => (db, .error (.storage (.payloadAdmissionPaused reason)))
  | (db, .ok .disabled) => read db none
  | (db, .ok (.reserved lease)) => read db (some lease)

/-! ## 2. Envelopes

An envelope is looked for in the database first and asked for after. -/

omit [Primitives] in
/-- `all_parents`: without duplicates, in their order. -/
def allParents (e : Event) : List ShortEventId :=
  match e.parentPrev, e.parentAux with
  | some prev, some aux => if prev = aux then [prev] else if prev < aux then [prev, aux] else [aux, prev]
  | some prev, none => [prev]
  | none, some aux => [aux]
  | none, none => []

omit [Primitives] in
/-- What a peer answers: a header, and whether the signature that came with it is one. -/
structure SignedEvent where
  event : Event
  /-- `verify_signature`. -/
  signatureValid : Bool := true

/-- `VerifiedEvent::verify_response`. The author is compared first, then the id, and only then is the signature
checked. -/
def verifyResponse (author : RostraId) (id : ShortEventId) (r : SignedEvent) : Option VerifiedEvent :=
  if author ≠ r.event.author then none
  else if (VerifiedEvent.ofEvent r.event).id ≠ id then none
  else if r.signatureValid then some (.ofEvent r.event)
  else none

/-- The first answer that verifies, in the order in which they come in. -/
def getEventFromPeers (author : RostraId) (id : ShortEventId) (answers : List SignedEvent) : Option VerifiedEvent :=
  answers.findSome? (verifyResponse author id)

omit [Primitives] in
/-- What others decide in one iteration: the clock, what the peers answer, the random number, and how a payload
read goes. -/
structure Turn where
  now : Timestamp
  answers : List SignedEvent
  /-- `rand::random::<u8>()`. -/
  random : ℕ
  reading : Reading

/-- An envelope that was obtained, from a peer or from the database, with what the insertion has found. -/
structure Obtained where
  event : VerifiedEvent
  processState : ProcessEventState
  insertOutcome : InsertEventOutcome

/-- `matches!(insert_outcome, InsertEventOutcome::AlreadyPresent)`. -/
def Obtained.alreadyPresent (o : Obtained) : Bool := decide (o.insertOutcome = .alreadyPresent)

/-- The stored envelope, if it is the author's; otherwise one from a peer, which is stored. -/
def obtainEvent (env : Env) (author : RostraId) (db : Database) (id : ShortEventId) (turn : Turn) :
    Except DbError (Database × Option Obtained) :=
  match (db.ev.events.get id).filter fun e => decide (e.author = author) with
  | some e => .ok (db, some ⟨.ofEvent e, .existing, .alreadyPresent⟩)
  | none =>
    match getEventFromPeers author id turn.answers with
    | none => .ok (db, none)
    | some v =>
      match processEventTx env {} db v turn.now (.pushed none none) with
      | .error e => .error e
      | .ok (db, insertOutcome, processState) => .ok (db, some ⟨v, processState, insertOutcome⟩)

/-! ## 3. The loop

One iteration takes the first entry of the queue. -/

omit [Primitives] in
/-- A timestamp with `Reverse(depth)`; an envelope that has not been looked for has none. -/
abbrev Priority := WithBot (ℕ ×ₗ ℕᵒᵈ)

abbrev QueueKey := Priority ×ₗ ShortEventId

/-- Not looked for yet. -/
def unkeyed : Priority := ⊥

def keyed (timestamp depth : ℕ) : Priority := ((toLex (timestamp, OrderDual.toDual depth) : ℕ ×ₗ ℕᵒᵈ) : Priority)

structure QueueItemData where
  processState : Option ProcessEventState := none
  childTimestamp : ℕ
  depth : ℕ
  event : Option VerifiedEvent := none

/-- The variables of a call, and what it returned. The queue and the table next to it are kept in step. -/
structure Download where
  queue : Finset QueueKey
  inQueue : Table ShortEventId QueueItemData
  downloadedAnything : Bool := false
  db : Database
  result : Option (Except Stop Bool) := none

/-- What can be seen of a call. -/
inductive Label
  /-- An envelope was obtained and queued under this priority. -/
  | found (id : ShortEventId) (v : VerifiedEvent) (timestamp depth : ℕ)
  | missed (id : ShortEventId)
  /-- Its parents were queued. -/
  | expanded (id : ShortEventId) (v : VerifiedEvent)
  /-- The payload phase of an event, and the request if there was one. -/
  | payload (id : ShortEventId) (request : Option VerifiedEvent)
  deriving DecidableEq

def Download.start (head : ShortEventId) (db : Database) : Download where
  queue := {toLex (unkeyed, head)}
  inQueue := (∅ : Table ShortEventId QueueItemData).insert head { childTimestamp := u64Max, depth := 0 }
  db := db

def Download.stop (s : Download) (stop : Stop) : Download := { s with result := some (.error stop) }

/-- A parent is queued, or its row is updated; its entry is not, so it keeps the priority it was first queued
under. -/
def Download.queueParent (timestamp depth : ℕ) (s : Download) (parent : ShortEventId) : Download :=
  match s.inQueue.get parent with
  | some existing =>
    { s with inQueue := s.inQueue.insert parent { existing with
        childTimestamp := min existing.childTimestamp timestamp
        depth := max existing.depth depth } }
  | none =>
    { s with
      queue := insert (toLex (unkeyed, parent)) s.queue
      inQueue := s.inQueue.insert parent { childTimestamp := timestamp, depth := depth } }

/-- The second visit of an entry: its payload is requested if the database wants it. -/
def Download.payloadPhase (env : Env) (s : Download) (turn : Turn) (id : ShortEventId) (item : QueueItemData)
    (processState : ProcessEventState) : Download × List Label :=
  if wantsContent s.db.ev id processState then
    match item.event with
    | none => (s.stop .mustHaveEvent, [])
    | some event =>
      match fetchEventContentFromPeersDetailed env s.db event turn.reading with
      | (db, .error stop) => ({ s with db := db }.stop stop, [.payload id (some event)])
      | (db, .ok outcome) =>
        ({ s with db := db, downloadedAnything := s.downloadedAnything || outcome.materialized },
          [.payload id (some event)])
  else (s, [.payload id none])

/-- The entry comes back with its priority; its parents are queued, unless the search stops early. -/
def Download.requeue (s : Download) (turn : Turn) (id : ShortEventId) (item : QueueItemData) (o : Obtained) :
    Download × List Label :=
  let timestamp := min item.childTimestamp o.event.event.timestamp
  let s := { s with
    downloadedAnything := s.downloadedAnything || !o.alreadyPresent
    queue := insert (toLex (keyed timestamp item.depth, id)) s.queue
    inQueue := s.inQueue.insert id { item with processState := some o.processState, event := some o.event } }
  if !wantsContent s.db.ev id o.processState && o.alreadyPresent && decide (turn.random % 5 ≠ 0) then
    (s, [.found id o.event timestamp item.depth])
  else
    ((allParents o.event.event).foldl (Download.queueParent timestamp (item.depth + 1)) s,
      [.found id o.event timestamp item.depth, .expanded id o.event])

/-- The first visit of an entry: its envelope is obtained, and it comes back under its priority. -/
def Download.traverse (env : Env) (author : RostraId) (s : Download) (turn : Turn) (id : ShortEventId)
    (item : QueueItemData) : Download × List Label :=
  match obtainEvent env author s.db id turn with
  | .error e => (s.stop (.storage e), [])
  | .ok (db, none) => ({ s with db := db }, [.missed id])
  | .ok (db, some o) => Download.requeue { s with db := db } turn id item o

/-- One iteration, or the end of the loop: on an empty queue the call returns whether anything was downloaded. -/
def step (env : Env) (author : RostraId) (s : Download) (turn : Turn) : Option (Download × List Label) :=
  if s.result.isSome then none
  else
    match PairedQueue.popFirst s.queue with
    | none => some ({ s with result := some (.ok s.downloadedAnything) }, [])
    | some (key, queue) =>
      let id := (ofLex key).2
      match s.inQueue.get id with
      | none => some ({ s with queue := queue }.stop .mustBeThere, [])
      | some item =>
        let s := { s with queue := queue, inQueue := s.inQueue.remove id }
        match item.processState with
        | some processState => some (s.payloadPhase env turn id item processState)
        | none =>
          if (ofLex key).1 = unkeyed then some (s.traverse env author turn id item)
          else some (s.stop .assertion, [])

/-- A call of `download_events_from_child`, as far as the turns go, with everything it showed. -/
def downloadEventsFromChild (env : Env) (author : RostraId) (head : ShortEventId) (db : Database)
    (turns : List Turn) : Download × List Label :=
  Machine.run (step env author) (.start head db) turns

/-! ## 4. What a call showed

Labels are for the statements about a call; the loop does not look at them. -/

def Label.found? : Label → Option ShortEventId
  | .found id _ _ _ => some id
  | _ => none

def Label.payload? : Label → Option ShortEventId
  | .payload id _ => some id
  | _ => none

/-- The envelopes that were obtained, in order. -/
def foundIds (trace : List Label) : List ShortEventId := trace.filterMap Label.found?

/-- The payload phases, in order. -/
def payloadIds (trace : List Label) : List ShortEventId := trace.filterMap Label.payload?

/-- The children through which an envelope was reached, since it was last looked for in vain. -/
def reachedThrough (id : ShortEventId) (trace : List Label) : List ShortEventId :=
  trace.foldl (fun children label =>
    match label with
    | .expanded child v => if id ∈ allParents v.event then children ++ [child] else children
    | .missed missed => if missed = id then [] else children
    | _ => children) []

end Calls

end Rostra.DownloadEvents
