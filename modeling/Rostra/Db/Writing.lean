/-
# The reducers as they write

`ContentOps` returns new tables or an error.  In the source a reducer writes into the tables of the
open transaction as it goes, and `Invalid` does NOT abort that transaction: what was written before it
is committed together with the rejection of the payload.  This module is the same code with the writes
where they are: every check and every write is one statement, in the order of
`process_event_content_inserted_tx`, and an error keeps the tables it finds.

A function that returns `DbResult` in the source cannot raise `Invalid`, and a database error aborts
the transaction.  So the tables such a function leaves when it fails do not matter, and it is one
statement here (`database`).
-/
import Rostra.Db.Ingest

namespace Rostra.Db

open Rostra

/-- A computation on the tables of an open transaction.  An error leaves them as they are by then. -/
abbrev Writing := EStateM ProcessEventError Projections

namespace Writing

/-! ## 1. Statements

A statement returns the tables it leaves, also when it fails. -/

/-- A write that cannot fail. -/
def write (f : Projections → Projections) : Writing Unit := fun p => .ok () (f p)

/-- A call of a function that fails with a database error or not at all. -/
def database (f : Projections → DbResult Projections) : Writing Unit := fun p =>
  match f p with
  | .ok p' => .ok () p'
  | .error e => .error (.db e) p

/-- `.boxed().context(InvalidSnafu)?`. -/
def decoded {α : Type} (o : Option α) : Writing α := fun p =>
  match o with
  | some a => .ok a p
  | none => .error .invalid p

/-- `return Err(..).context(InvalidSnafu)` under a condition. -/
def require (valid : Bool) : Writing Unit := fun p =>
  if valid then .ok () p else .error .invalid p

/-- A statement under a condition. -/
def provided (q : Bool) (w : Writing Unit) : Writing Unit := if q then w else pure ()

variable [Primitives]

/-! ## 2. The kinds

One program for each kind, statement by statement. -/

/-- The device's rows are taken out of the index and put back around the change. -/
def dmApplyAnnouncementTx (env : Env) (author : RostraId) (a : Dm.Announcement)
    (timestamp : Timestamp) (eventId : ShortEventId) : Writing Unit := do
  let p ← get
  let old := (p.idsDmDevices.get (author, a.deviceId)).getD {}
  let state := old.apply a timestamp eventId
  write fun p => { p with idsDmDevicesByInterval :=
    p.idsDmDevicesByInterval \ dmIndexRows author a.deviceId old }
  write fun p => { p with idsDmDevicesByInterval :=
    p.idsDmDevicesByInterval ∪ dmIndexRows author a.deviceId state }
  write fun p => { p with idsDmDevices := p.idsDmDevices.insert (author, a.deviceId) state }
  write fun p => { p with idsDmInstallation := p.idsDmInstallation.map fun i =>
    if author = env.selfId ∧ state.retired ∧ i.deviceId = a.deviceId then { i with retired := true }
    else i }

def processDmTx (env : Env) (c : EventContent) : Writing (Option EventSingletonRecord) := do
  let v := c.event
  require !(v.event.isSingleton || v.event.keyAux != 0)
  let bytes ← decoded c.content
  if v.event.kind = EventKind.DM_DEVICE then
    let announcement ← decoded (Dm.Announcement.decode bytes v.event.timestamp)
    dmApplyAnnouncementTx env v.event.author announcement v.event.timestamp v.id
  else
    require (Primitives.validateFrame bytes)
    write fun p => { p with eventsDmPending := p.eventsDmPending.insert v.id none }
  return plainSingleton v

def processFollowTx (c : EventContent) : Writing (Option EventSingletonRecord) := do
  let v := c.event
  let order : EventOrder := toLex (v.event.timestamp, v.id)
  let content ← decoded c.follow?
  if content.isUnfollow then
    write fun p => (insertUnfollowTx p v.event.author order content.followee).1
  else
    write fun p => (insertFollowTx p v.event.author order content).1
  return plainSingleton v

def processNodeAnnouncementTx (c : EventContent) : Writing (Option EventSingletonRecord) := do
  let v := c.event
  let addr ← decoded c.nodeAnnouncement?
  write fun p =>
    let existing := (p.idsNodes.get (v.event.author, addr)).getD ⟨v.event.timestamp, {}⟩
    let record := { existing with
      announcementTs := max existing.announcementTs v.event.timestamp }
    { p with idsNodes := p.idsNodes.insert (v.event.author, addr) record }
  write fun p => { p with idsNodes := trimIrohNodesToLimitTx v.event.author p.idsNodes }
  return plainSingleton v

def processProfileUpdateTx (c : EventContent) : Writing (Option EventSingletonRecord) := do
  let v := c.event
  let content ← decoded c.socialProfileUpdate?
  let record : IdSocialProfileRecord := ⟨v.id, content.displayName, content.bio, content.avatar⟩
  write fun p =>
    let profiles := insertLatestValueTx v.event.timestamp v.event.author record
      IdSocialProfileRecord.eventId p.socialProfiles
    { p with socialProfiles := profiles }
  return plainSingleton v

/-- The lineage rows of an edit. -/
def replaceTx (c : EventContent) : Option ShortEventId → Writing Unit
  | some oldEventId => write fun p => insertSocialPostReplacementTx p c oldEventId
  | none => pure ()

def applySocialPostTx (env : Env) (ctx : TxCtx) (c : EventContent) (post : SocialPost)
    (replaced : Option ShortEventId) (now : Timestamp) : Writing Unit := do
  let v := c.event
  let author := v.event.author
  write fun p => { p with socialPostsByTime := insert (v.event.timestamp, v.id) p.socialPostsByTime }
  database fun p =>
    insertSocialPostReceiptTx p v.id (effectiveReceivedAt env p author v.event.timestamp now)
  replaceTx c replaced
  provided post.news <|
    write fun p => upsertSocialNewsRankTx p ⟨author, v.id⟩ (min v.event.timestamp now) 0
  provided (mentionsSelf env author post) <|
    write fun p => { p with socialPostsSelfMention := insert v.id p.socialPostsSelfMention }
  database fun p => insertReplyToTx p v post
  database fun p => appendSocialPostMaterializationTx ctx p v.id

/-- A skipped post returns before the singleton row. -/
def processSocialPostTx (env : Env) (ctx : TxCtx) (c : EventContent) (now : Timestamp) :
    Writing (Option EventSingletonRecord) := do
  let post ← decoded c.socialPost?
  match socialPostProjectionPlan c post with
  | .skip => return none
  | .apply replaced =>
    applySocialPostTx env ctx c post replaced now
    return plainSingleton c.event

/-- A payload without the shape of a vote returns early as well. -/
def processVoteTx (c : EventContent) : Writing (Option EventSingletonRecord) := do
  let v := c.event
  let content ← decoded c.socialVote?
  match shapedVote v content with
  | none => return none
  | some vote =>
    database fun p => processSocialVoteTx p vote v.event.author (toLex (v.event.timestamp, v.id))
    return some ⟨v.id, some vote⟩

def processShoutboxTx (env : Env) (c : EventContent) (now : Timestamp) :
    Writing (Option EventSingletonRecord) := do
  let v := c.event
  let _content ← decoded c.shoutbox?
  database fun p => do
    let (_, next, rows) ← insertReceptionOrderedTx p.receptionOrderNext
      (effectiveReceivedAt env p v.event.author v.event.timestamp now) v.id
      p.shoutboxPostsByReceivedAt
    pure { p with receptionOrderNext := next, shoutboxPostsByReceivedAt := rows }
  return plainSingleton v

/-! ## 3. Dispatch

The same match as in `ContentOps`. -/

def processKindTx (env : Env) (ctx : TxCtx) (c : EventContent) (now : Timestamp) :
    Writing (Option EventSingletonRecord) :=
  let kind := c.event.event.kind
  if kind = EventKind.DM_DEVICE ∨ kind = EventKind.DIRECT_MESSAGE then processDmTx env c
  else if kind = EventKind.FOLLOW ∨ kind = EventKind.UNFOLLOW then processFollowTx c
  else if kind = EventKind.NODE_ANNOUNCEMENT then processNodeAnnouncementTx c
  else if kind = EventKind.SOCIAL_PROFILE_UPDATE then processProfileUpdateTx c
  else if kind = EventKind.SOCIAL_POST then processSocialPostTx env ctx c now
  else if kind = EventKind.SOCIAL_VOTE then processVoteTx c
  else if kind = EventKind.SHOUTBOX then processShoutboxTx env c now
  else pure (plainSingleton c.event)

def processEventContentInsertedTx (env : Env) (ctx : TxCtx) (c : EventContent) (now : Timestamp) :
    Writing Unit := do
  let record ← processKindTx env ctx c now
  if let some record := record then
    write fun p => insertSingletonTx p c.event record

/-! ## 4. The transaction

What the caller does with the tables that a rejected payload leaves. -/

/-- A payload for content that is `Missing`.  Whatever the reducer has written is kept, unless the
transaction is aborted. -/
def materializeTx (env : Env) (ctx : TxCtx) (db : Database) (c : VerifiedEventContent)
    (now : Timestamp) : DbResult Database :=
  let v := c.event
  let ev := { db.ev with
    eventsContentMissing :=
      unscheduleTx (db.ev.eventsContentState.get v.id) v.id db.ev.eventsContentMissing }
  match c.content with
  | none => .ok { db with ev := ev }
  | some b =>
    match processEventContentInsertedTx env ctx c.toEventContent now db.proj with
    | .ok _ proj => do
      let ev ← storeContentTx ev v b
      pure { db with
        ev := ev, proj := proj, origins := recordMaterializedTx ctx db.origins v.id now }
    | .error .invalid proj => do
      let ev ← rejectContentTx ev v
      pure { db with ev := ev, proj := proj }
    | .error (.db e) _ => .error e

def processEventContentInnerTx (env : Env) (ctx : TxCtx) (db : Database) (c : VerifiedEventContent)
    (now : Timestamp) (ledger : AdmissionState) (buffer : Option PayloadBuffer) :
    DbResult Database :=
  if (db.ev.events.get c.event.id).isNone ∨ MAX_CONTENT_LEN ≤ c.event.event.contentLen then .ok db
  else if canInsertEventContentTx db.ev c.event.id then do
    let _ ← admitMaterializationTx db c.event buffer ledger
    materializeTx env ctx db c now
  else supplyDeletedTx db c

def processEventContentTx (env : Env) (ctx : TxCtx) (db : Database) (c : VerifiedEventContent)
    (now : Timestamp) (ledger : AdmissionState) (buffer : Option PayloadBuffer) :
    DbResult Database := do
  let before ← payloadBeforeTx env db.ev c.event
  let db ← processEventContentInnerTx env ctx db c now ledger buffer
  payloadAfterTx env db before

end Writing

end Rostra.Db
