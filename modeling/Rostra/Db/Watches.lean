/-
# Published watches

A database handle publishes four values about its own account: whom it follows, who follows it,
the web of trust over its followees, and its least head.  They are read from the tables once, when
the database is opened (`open_inner`), and from then on replaced by the hooks that a transaction
registers while it runs and that `WriteTransactionCtx::commit` calls, in their order, after the
tables were committed.  A transaction that is rolled back drops its hooks.

* Section 1 reads the four values (`tx_ops.rs`).
* Section 2 is the two places that register a hook: the follow arm of
  `process_event_content_inserted_tx`, and a newly inserted envelope of the own account in
  `process_event_inner_tx_with_source`.  A hook carries the value as it was read in the middle of
  the transaction.
* Section 3 follows the control flow of the transactions down to these two places.

The publisher lock is held over commit and hooks, so one operation is one step of the handle.
-/
import Rostra.Db.Run

namespace Rostra.Db

open Rostra

/-! ## 1. Reading the tables

Each value is a function of the tables. -/

/-- The entries of a `HashMap` from an account to its record. The order of a hash map is not part of it. -/
abbrev FolloweeMap := Finset (RostraId × IdsFolloweesRecord)

def readFolloweesTx (id : RostraId) (t : Table (RostraId × RostraId) IdsFolloweesRecord) :
    FolloweeMap :=
  (t.keys.filter fun k => k.1 = id).biUnion fun k => ((t.get k).map fun r => (k.2, r)).toFinset

/-- The record of a follower is empty. -/
def readFollowersTx (id : RostraId) (t : Finset (RostraId × RostraId)) : Finset RostraId :=
  (t.filter fun k => k.1 = id).image fun k => k.2

structure WotData where
  followees : FolloweeMap
  /-- Followees of followees, without the account itself and its direct followees. -/
  extended : Finset RostraId
  deriving DecidableEq

/-- The account itself is always trusted. -/
def WotData.contains (w : WotData) (id selfId : RostraId) : Bool :=
  id = selfId ∨ id ∈ w.followees.image Prod.fst ∨ id ∈ w.extended

/-- Everybody but the account itself. -/
def WotData.iterAll (w : WotData) : Finset RostraId := w.followees.image Prod.fst ∪ w.extended

def computeWotTx (selfId : RostraId) (direct : FolloweeMap)
    (t : Table (RostraId × RostraId) IdsFolloweesRecord) : WotData where
  followees := direct
  extended := ((direct.image Prod.fst).biUnion fun followee =>
    (readFolloweesTx followee t).image Prod.fst).filter fun ext =>
      ext ≠ selfId ∧ ext ∉ direct.image Prod.fst

/-- The first row of the account's range. An account may have several heads, and the watch shows the smallest id.
-/
def readHeadTx (selfId : RostraId) (t : Finset (RostraId × ShortEventId)) : Option ShortEventId :=
  Table.least ((t.filter fun k => k.1 = selfId).image fun k => k.2)

/-- The current values of the four `watch` channels. A receiver sees the last one, not those in between. -/
structure Watches where
  selfFollowees : FolloweeMap
  selfFollowers : Finset RostraId
  selfWot : WotData
  selfHead : Option ShortEventId
  deriving DecidableEq

/-- What `open_inner` puts into the channels: everything is read from the tables at once. -/
def readWatches (env : Env) (db : Database) : Watches where
  selfFollowees := readFolloweesTx env.selfId db.proj.idsFollowees
  selfFollowers := readFollowersTx env.selfId db.proj.idsFollowers
  selfWot := computeWotTx env.selfId (readFolloweesTx env.selfId db.proj.idsFollowees)
    db.proj.idsFollowees
  selfHead := readHeadTx env.selfId db.ev.eventsHeads

/-! ## 2. Commit hooks

A hook replaces a value, or one element of it. -/

/-- One `send_replace`, with the value that the hook captured when it was registered, inside of the transaction. -/
inductive Publication
  | followees (value : FolloweeMap)
  | followers (value : Finset RostraId)
  | wot (value : WotData)
  | head (value : Option ShortEventId)

def Watches.publish (w : Watches) : Publication → Watches
  | .followees value => { w with selfFollowees := value }
  | .followers value => { w with selfFollowers := value }
  | .wot value => { w with selfWot := value }
  | .head value => { w with selfHead := value }

/-- The hooks of a follow that changed something, read from the tables it left. -/
def followHooks (env : Env) (p : Projections) (author followee : RostraId) : List Publication :=
  let selfFollowees := readFolloweesTx env.selfId p.idsFollowees
  let selfWot := computeWotTx env.selfId selfFollowees p.idsFollowees
  (if author = env.selfId then [.followees selfFollowees, .wot selfWot]
    -- one of the account's followees changed whom it follows
    else if (p.idsFollowees.get (env.selfId, author)).isSome then [.wot selfWot]
    else []) ++
  (if followee = env.selfId then [.followers (readFollowersTx env.selfId p.idsFollowers)] else [])

/-- A follow registers its hooks when the reducer reports a change. -/
def insertFollowHooks (env : Env) (p : Projections) (author : RostraId) (order : EventOrder)
    (content : Follow) : List Publication :=
  let (p, updated) := if content.isUnfollow then insertUnfollowTx p author order content.followee
    else insertFollowTx p author order content
  if updated then followHooks env p author content.followee else []

variable [Primitives]

/-- The hooks of a payload that is projected.  Only the follow arm has any for these channels, and
it decodes the payload first. -/
def contentInsertedHooks (env : Env) (p : Projections) (c : EventContent) : List Publication :=
  let v := c.event
  if v.event.kind = EventKind.FOLLOW ∨ v.event.kind = EventKind.UNFOLLOW then
    match c.follow? with
    | some content =>
      insertFollowHooks env p v.event.author (toLex (v.event.timestamp, v.id)) content
    | none => []
  else []

/-- The hook of an envelope: an event of the own account that was not there before. -/
def eventHooks (env : Env) (db : Database) (v : VerifiedEvent) : List Publication :=
  match insertEventTx db.ev v with
  | .ok (ev, .inserted ..) =>
    if v.event.author = env.selfId then [.head (readHeadTx env.selfId ev.eventsHeads)] else []
  | _ => []

/-! ## 3. The hooks of a transaction

The control flow of the transactions once more, in order to collect the hooks. -/

/-- A payload reaches its reducer when it is awaited and admitted. One that does not registers nothing. -/
def eventContentHooks (env : Env) (db : Database) (c : VerifiedEventContent)
    (ledger : AdmissionState) (buffer : Option PayloadBuffer) : List Publication :=
  if (db.ev.events.get c.event.id).isNone ∨ MAX_CONTENT_LEN ≤ c.event.event.contentLen then []
  else if canInsertEventContentTx db.ev c.event.id then
    match admitMaterializationTx db c.event buffer ledger, c.content with
    | .ok _, some _ => contentInsertedHooks env db.proj c.toEventContent
    | _, _ => []
  else []

/-- The carried envelope first, then the payload over the tables it left. -/
def carriedHooks (env : Env) (db : Database) (c : VerifiedEventContent) (now : Timestamp)
    (ledger : AdmissionState) (buffer : Option PayloadBuffer) : List Publication :=
  eventHooks env db c.event ++
    match processEventTx env {} db c.event now (.pushed none none) with
    | .ok (db, _) => eventContentHooks env db c ledger buffer
    | .error _ => []

def deliverHooks (env : Env) (db : Database) : Delivery → List Publication
  | .envelope v _ _ => eventHooks env db v
  | .payload c now ledger => carriedHooks env db c now ledger none

def ingestHooks (env : Env) (db : Database) : List Delivery → List Publication
  | [] => []
  | d :: ds =>
    deliverHooks env db d ++
      match deliver env db d with
      | .ok db => ingestHooks env db ds
      | .error _ => []

/-- Materialization from stored bytes, down to the payload's reducer. -/
def materializeStoredHooks (env : Env) (db : Database) (id : ShortEventId)
    (ledger : AdmissionState) : List Publication :=
  match db.ev.events.get id with
  | none => []
  | some e =>
    if !payloadIsMissingTx db.ev id then []
    else
      let v := VerifiedEvent.ofEvent e
      match admitMaterializationTx db v none ledger with
      | .error _ => []
      | .ok (buffer, ledger) =>
        match reservePayloadAllocation ledger e.contentLen with
        | .error _ => []
        | .ok _ =>
          match (db.ev.contentStore.get e.contentHash).bind fun b =>
              VerifiedEventContent.verify v (some b) with
          | none => []
          | some c => eventContentHooks env db c ledger buffer

/-- The hooks that a transaction has registered when it commits.  The operations of pruning,
collection, accounting, retention and scheduling register none for these channels. -/
def commitHooks (env : Env) (db : Database) : Op → List Publication
  | .ingest ds => ingestHooks env db ds
  | .ingestAdmitted c now ledger buffer => carriedHooks env db c now ledger buffer
  | .materializeStored id _ ledger => materializeStoredHooks env db id ledger
  | _ => []

/-- An open database: the tables, and what its channels show. -/
structure Handle where
  db : Database
  watches : Watches
  deriving DecidableEq

/-- `open_inner`. -/
def Handle.open (env : Env) (db : Database) : Handle := ⟨db, readWatches env db⟩

/-- One write transaction: commit, then publish. A transaction that fails publishes nothing. -/
def Handle.step (env : Env) (h : Handle) (op : Op) : DbResult Handle := do
  let db ← Db.step env h.db op
  pure ⟨db, (commitHooks env h.db op).foldl Watches.publish h.watches⟩

end Rostra.Db
