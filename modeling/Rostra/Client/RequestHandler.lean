/-
# The request handler

`request_handler.rs`: what a node answers to the calls of other nodes.  A handler decodes the body of a
request as a whole, and writes a return code, a message and perhaps a payload.

* The calls that only read are functions of the tables they read (`Reply`).  `GET_EVENT_CONTENT` reads twice,
  in two transactions, and expects to find the event of the content it has found.
* `FEED_EVENT` writes: it retains the header, reserves room, asks for the payload and ingests it, each in a
  transaction of its own, and any number of calls and other transactions take turns (`Feeding`).
* A row of an envelope keeps its signature.  The tables here do not, so the handlers take the signatures of
  the stored envelopes as a parameter.

Timeouts and closed connections end a call between two of its steps.
-/
import Rostra.Client.DownloadEvents
import Rostra.Client.HeadUpdateBroadcaster
import Rostra.P2p.Connection

namespace Rostra.RequestHandler

open Rostra Db P2p Codec

/-! ## 1. Replies

A reply is a return code with its data; the framing is in `P2p.Connection`. -/

inductive InvalidRequest
  /-- `Author not needed`. -/
  | authorNotNeeded
  | event (e : VerifiedEventError)

inductive IncomingConnectionError
  | rpc (e : RpcError)
  | decoding (e : DecodeError)
  | db (e : DbError)
  | invalidRequest (source : InvalidRequest)

/-- How a handler ends. A panic is told apart from an error. -/
inductive Ending
  | done
  | failed (e : IncomingConnectionError)
  | panicked

/-- What a handler has written when it ends. What was written stays written, whatever the end is. -/
structure Reply where
  written : Bytes
  ending : Ending

/-- A success code and a response. -/
def success (rpc : Rpc) (v : rpc.Response) : Bytes := 0 :: writeMessage rpc.response v

/-- A request that does not decode is not answered: the handler fails before it has written anything. -/
def withRequest (rpc : Rpc) (reqMsg : Bytes) (handler : rpc.Request → Reply) : Reply :=
  match decodeWhole MAX_REQUEST_SIZE rpc.request reqMsg with
  | .error e => ⟨[], .failed (.decoding e)⟩
  | .ok req => handler req

def handlePingRequest (reqMsg : Bytes) : Reply :=
  withRequest .PING reqMsg fun n => ⟨success .PING n, .done⟩

instance (e : Event) : Decidable e.Fits :=
  decidable_of_iff
    ((e.version < 256 ^ 1 ∧ e.flags < 256 ^ 1 ∧ e.kind.code < 256 ^ 2 ∧ e.contentLen < 256 ^ 4 ∧
        e.timestamp < 256 ^ 8 ∧ e.keyAux < 256 ^ 16) ∧
      ((ofLex e.author).1 < 256 ^ 16 ∧ (ofLex e.author).2 < 256 ^ 16) ∧
      (∀ x ∈ e.parentPrev, 0 < x ∧ x < 256 ^ 16) ∧ (∀ x ∈ e.parentAux, 0 < x ∧ x < 256 ^ 16) ∧
      e.contentHash < 256 ^ 32)
    ⟨fun ⟨⟨h₁, h₂, h₃, h₄, h₅, h₆⟩, ⟨h₇, h₈⟩, h₉, h₁₀, h₁₁⟩ => ⟨h₁, h₂, h₃, h₄, h₅, h₆, h₇, h₈, h₉, h₁₀, h₁₁⟩,
      fun ⟨h₁, h₂, h₃, h₄, h₅, h₆, h₇, h₈, h₉, h₁₀, h₁₁⟩ => ⟨⟨h₁, h₂, h₃, h₄, h₅, h₆⟩, ⟨h₇, h₈⟩, h₉, h₁₀, h₁₁⟩⟩

/-- `get_event`: the signed envelope of a row.  A header that was decoded fits. -/
def getEvent (signatures : ShortEventId → Word 64) (t : EventTables) (id : ShortEventId) :
    Option Bincode.SignedEvent :=
  (t.events.get id).bind fun e => if h : e.Fits then some (⟨e, h⟩, signatures id) else none

def handleGetEvent (signatures : ShortEventId → Word 64) (t : EventTables) (reqMsg : Bytes) : Reply :=
  withRequest .GET_EVENT reqMsg fun id => ⟨success .GET_EVENT (getEvent signatures t id.1), .done⟩

/-- The content is read from `t` and its event, a transaction later, from `t'`. -/
def handleGetEventContent [Transport] (t t' : EventTables) (reqMsg : Bytes) : Reply :=
  withRequest .GET_EVENT_CONTENT reqMsg fun id =>
    let content := Client.getEventContent t id.1
    let opening := success .GET_EVENT_CONTENT content.isSome
    match content with
    | none => ⟨opening, .done⟩
    | some content =>
      match t'.events.get id.1 with
      -- `Must have event if we have content`
      | none => ⟨opening, .panicked⟩
      | some _ =>
        match writeBaoContent content with
        | .ok data => ⟨opening ++ data, .done⟩
        | .error e => ⟨opening, .failed (.rpc e)⟩

/-- `sample_head`: a random place.  The order of a `HashSet` is nobody's, so it may as well be that of the ids. -/
def sampleHead (heads : Finset ShortEventId) (random : ℕ) : Option ShortEventId :=
  (heads.sort (· ≤ ·))[random % heads.card]?

/-- An id in its sixteen bytes. -/
def shortEventId (id : ShortEventId) : Word 16 := ⟨id % 256 ^ 16, Nat.mod_lt _ (by decide)⟩

def handleGetHead (t : EventTables) (random : ℕ) (reqMsg : Bytes) : Reply :=
  withRequest .GET_HEAD reqMsg fun id =>
    ⟨success .GET_HEAD ((sampleHead (getHeadsEventsTx t id.1) random).map shortEventId), .done⟩

/-- The calls that only read, from the first byte of their stream.  An unknown id is not answered. -/
def respond [Transport] (signatures : ShortEventId → Word 64) (t t' : EventTables) (random : ℕ) (s : Bytes) :
    Option Reply :=
  match readRequestRaw s with
  | .error e => some ⟨[], .failed (.rpc e)⟩
  | .ok ((id, reqMsg), _) =>
    match id.rpc? with
    | some .PING => some (handlePingRequest reqMsg)
    | some .GET_EVENT => some (handleGetEvent signatures t reqMsg)
    | some .GET_EVENT_CONTENT => some (handleGetEventContent t t' reqMsg)
    | some .GET_HEAD => some (handleGetHead t random reqMsg)
    | some .FEED_EVENT | some .WAIT_HEAD_UPDATE | some .WAIT_FOLLOWERS_NEW_HEADS => none
    | none => some ⟨[], .done⟩

/-! ## 2. Fed events

A call that writes, from step to step. -/

/-- `event_size_limit`. -/
def eventSizeLimit : ℕ := 16 * 1024 * 1024

variable [Primitives] [Transport]

omit [Transport] in
/-- Where a `FEED_EVENT` is. -/
inductive Feed
  /-- About to retain the header of an event that is too large. -/
  | tooLarge (v : VerifiedEvent)
  /-- About to begin an attempt of `prepare_payload_acquisition`. -/
  | preparing (v : VerifiedEvent)
  | materializing (v : VerifiedEvent)
  | reserving (v : VerifiedEvent)
  /-- About to acquire two buffers for the lease. -/
  | leased (v : VerifiedEvent) (lease : PayloadBuffer)
  /-- The payload was asked for. -/
  | receiving (v : VerifiedEvent) (buffer : Option PayloadBuffer)
  | ended (ending : Ending)

omit [Transport] in
/-- What is seen of a call. -/
inductive FeedLabel
  /-- The header was accepted. -/
  | admitted (v : VerifiedEvent)
  | committed (op : Op)
  /-- A success code and the response. -/
  | invited (v : VerifiedEvent)
  /-- The return code with which the call ends. -/
  | returned (v : VerifiedEvent) (code : UInt8)

/-- What others decide in one step. A step uses what concerns it, and leaves the rest alone. -/
structure FeedTurn where
  now : Timestamp
  ledger : AdmissionState
  /-- `check_config`, and the registration of a demand after a refusal. -/
  check : Except DbError Unit := .ok ()
  /-- A refused preparation is tried again. -/
  again : Bool := false
  /-- The ledger when the second buffer is acquired. -/
  conversionLedger : AdmissionState := {}
  /-- What the caller sends. -/
  payload : Bytes := []

/-- Up to the first transaction: the author is ourselves or somebody we follow, and has signed. -/
def openFeed (env : Env) (followees : Finset RostraId) (reqMsg : Bytes) : Feed × List FeedLabel × Bytes :=
  match decodeWhole MAX_REQUEST_SIZE Rpc.FEED_EVENT.request reqMsg with
  | .error e => (.ended (.failed (.decoding e)), [], [])
  | .ok event =>
    if event.1.1.author = env.selfId ∨ event.1.1.author ∈ followees then
      match verifyReceivedAsIs event with
      | .error e => (.ended (.failed (.invalidRequest (.event e))), [], [])
      | .ok v =>
        (if eventSizeLimit < v.event.contentLen then .tooLarge v else .preparing v, [.admitted v], [])
    else (.ended (.failed (.invalidRequest .authorNotNeeded)), [], [RETURN_CODE_DOES_NOT_NEED])

namespace Feed

omit [Transport] in
/-- A call ends with a return code. -/
def finish (db : Database) (shown : List FeedLabel) (v : VerifiedEvent) (code : UInt8) :
    Database × Feed × List FeedLabel := (db, .ended .done, shown ++ [.returned v code])

omit [Transport] in
def fail (db : Database) (e : DbError) : Database × Feed × List FeedLabel := (db, .ended (.failed (.db e)), [])

omit [Transport] in
/-- A refused preparation is tried again, or is the answer. The caller is told that its payload is not needed. -/
def refuse (db : Database) (shown : List FeedLabel) (v : VerifiedEvent) (turn : FeedTurn) :
    Database × Feed × List FeedLabel :=
  if turn.again then (db, .preparing v, shown) else finish db shown v RETURN_CODE_DOES_NOT_NEED

/-- The next step: a transaction, or the buffers. -/
def step (env : Env) (db : Database) (turn : FeedTurn) : Feed → Database × Feed × List FeedLabel
  | .tooLarge v =>
    match processEventTx env {} db v turn.now (.pushed none none) with
    | .error e => fail db e
    | .ok (db, _) =>
      finish db [.committed (.ingest [.envelope v turn.now (.pushed none none)])] v RETURN_CODE_ALREADY_HAVE
  | .preparing v =>
    match turn.check with
    | .error e => fail db e
    | .ok () =>
      match processEventTx env {} db v turn.now (.pushed none none) with
      | .error e => fail db e
      | .ok (db, _) =>
        (db, .materializing v, [.committed (.ingest [.envelope v turn.now (.pushed none none)])])
  | .materializing v =>
    let op := Op.materializeStored v.id turn.now turn.ledger
    match tryMaterializeStoredPayload env {} db v.id turn.now turn.ledger with
    | .error e => fail db e
    | .ok (db, .unavailable) => (db, .reserving v, [.committed op])
    | .ok (db, .deferred _) => refuse db [.committed op] v turn
    | .ok (db, .processed) | .ok (db, .invalid) | .ok (db, .unchanged) =>
      finish db [.committed op] v RETURN_CODE_ALREADY_HAVE
  | .reserving v =>
    let op := Op.ingest [.envelope v turn.now (.pushed none none)]
    match reservePayload env db v turn.now turn.ledger with
    | .error e => fail db e
    | .ok (db, .disabled) => (db, .receiving v none, [.committed op, .invited v])
    | .ok (db, .reserved lease) => (db, .leased v lease, [.committed op])
    | .ok (db, .deferred _) => refuse db [.committed op] v turn
    | .ok (db, .unneeded) => finish db [.committed op] v RETURN_CODE_ALREADY_HAVE
  | .leased v lease =>
    match tryAcquireBuffer turn.ledger lease with
    | .error _ => finish db [] v RETURN_CODE_DOES_NOT_NEED
    | .ok _ =>
      match tryAcquireBuffer turn.conversionLedger lease with
      | .error _ => finish db [] v RETURN_CODE_DOES_NOT_NEED
      | .ok _ => (db, .receiving v (some lease), [.invited v])
  | .receiving v buffer =>
    match readBaoContent v.event.contentLen v.event.contentHash turn.payload with
    | .error e => (db, .ended (.failed (.rpc e)), [])
    | .ok (b, _) =>
      match VerifiedEventContent.verify v (some b) with
      | none => (db, .ended (.failed (.invalidRequest (.event .contentMismatch))), [])
      | some c =>
        match tryProcessAdmittedEventContent env {} db c turn.now turn.ledger buffer with
        | .error e => fail db e
        | .ok (db, .deferred reason) =>
          (db, .ended (.failed (.db (.payloadAdmissionPaused reason))),
            [.committed (.ingestAdmitted c turn.now turn.ledger buffer)])
        | .ok (db, _) => finish db [.committed (.ingestAdmitted c turn.now turn.ledger buffer)] v 0
  | .ended ending => (db, .ended ending, [])

end Feed

omit [Transport] in
/-- A database, and the calls that are underway. They share nothing but the database. -/
structure Feeding where
  db : Database := {}
  feeds : List Feed := []

omit [Transport] in
inductive FeedAct
  /-- Any other transaction. -/
  | commit (op : Op)
  /-- A call comes in while the snapshot of the followees is this. -/
  | request (followees : Finset RostraId) (reqMsg : Bytes)
  /-- The next step of one of the calls. -/
  | turn (call : ℕ) (turn : FeedTurn)
  /-- A timeout, or the end of the connection. -/
  | drop (call : ℕ)

def Feeding.step (env : Env) (w : Feeding) : FeedAct → Option (Feeding × List FeedLabel)
  | .commit op =>
    match Db.step env w.db op with
    | .ok db => some ({ w with db := db }, [.committed op])
    | .error _ => none
  | .request followees reqMsg =>
    let opened := openFeed env followees reqMsg
    some ({ w with feeds := w.feeds ++ [opened.1] }, opened.2.1)
  | .turn call turn =>
    (w.feeds[call]?).map fun feed =>
      let r := feed.step env w.db turn
      (⟨r.1, w.feeds.set call r.2.1⟩, r.2.2)
  | .drop call => some ({ w with feeds := w.feeds.eraseIdx call }, [])

/-- Every interleaving, from an empty database. -/
def fed (env : Env) (acts : List FeedAct) : Feeding × List FeedLabel := Machine.run (Feeding.step env) {} acts

end Rostra.RequestHandler
